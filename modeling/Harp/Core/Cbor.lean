import Mathlib

/-!
This module contains the CBOR codec of `core/src/cbor.c`: the encoders append to a buffer, the
decoder walks a byte string and latches an error flag.

A buffer is the list of its bytes and its allocation succeeds. A decoding function returns `none`
where the source returns `false`; the decoder (the bytes from `p` to `end`, and `err`) survives the
failure, as the caller's `harp_cdec` does. `Dec.error` sets `err`, `Dec.fail` leaves it as it is.
`skipItem` carries the number of levels that are left instead of the depth.
-/

namespace Harp

abbrev Bytes := List UInt8

def ascii (s : String) : Bytes :=
  s.toList.map (fun c => UInt8.ofNat c.toNat)

def cstr (s : Bytes) : Bytes :=
  s.takeWhile (· ≠ 0)

def beBytes (v : Nat) : Nat → Bytes
  | 0 => []
  | n + 1 => UInt8.ofNat (v >>> (8 * n)) :: beBytes v n

def beNat (bs : Bytes) : Nat :=
  bs.foldl (fun v b => v <<< 8 + b.toNat) 0

-- The same numbers as a little-endian host stores them.
def leNat : Bytes → Nat
  | [] => 0
  | b :: bs => b.toNat + leNat bs * 256

def leBytes (v : Nat) : Nat → Bytes
  | 0 => []
  | len + 1 => UInt8.ofNat v :: leBytes (v / 256) len

def leField (b : Bytes) (pos len : Nat) : Nat :=
  leNat ((b.drop pos).take len)

def putHead (major : Nat) (v : Nat) : Bytes :=
  if v < 24 then
    [UInt8.ofNat (major <<< 5 + v)]
  else if v ≤ 0xff then
    UInt8.ofNat (major <<< 5 + 24) :: beBytes v 1
  else if v ≤ 0xffff then
    UInt8.ofNat (major <<< 5 + 25) :: beBytes v 2
  else if v ≤ 0xffffffff then
    UInt8.ofNat (major <<< 5 + 26) :: beBytes v 4
  else
    UInt8.ofNat (major <<< 5 + 27) :: beBytes v 8

def cborUint (v : Nat) : Bytes :=
  putHead 0 v

def cborInt (v : Int) : Bytes :=
  if v < 0 then putHead 1 (-1 - v).toNat else putHead 0 v.toNat

def cborBytes (p : Bytes) : Bytes :=
  putHead 2 p.length ++ p

def cborText (s : Bytes) : Bytes :=
  putHead 3 s.length ++ s

def cborArray (n : Nat) : Bytes :=
  putHead 4 n

def cborMap (n : Nat) : Bytes :=
  putHead 5 n

def cborBool (v : Bool) : Bytes :=
  [if v then 0xf5 else 0xf4]

def cborNull : Bytes :=
  [0xf6]

structure Cdec where
  p : Bytes
  err : Bool
deriving DecidableEq, Repr

def Cdec.init (buf : Bytes) : Cdec :=
  ⟨buf, false⟩

abbrev Dec (α : Type) : Type :=
  Cdec → Option α × Cdec

namespace Dec

def pure (a : α) : Dec α :=
  fun d => (some a, d)

def bind (x : Dec α) (f : α → Dec β) : Dec β :=
  fun d =>
    match x d with
    | (some a, d) => f a d
    | (none, d) => (none, d)

instance : Monad Dec where
  pure := Dec.pure
  bind := Dec.bind

def fail : Dec α :=
  fun d => (none, d)

def error : Dec α :=
  fun d => (none, { d with err := true })

def loop (n : Nat) (body : σ → Dec σ) (s : σ) : Dec σ :=
  match n with
  | 0 => Dec.pure s
  | n + 1 => Dec.bind (body s) (fun s => loop n body s)

end Dec

def need (n : Nat) : Dec Unit := fun d =>
  if d.err || d.p.length < n then
    Dec.error d
  else
    Dec.pure () d

def advance (n : Nat) : Dec Bytes := fun d =>
  (some (d.p.take n), { d with p := d.p.drop n })

structure Head where
  major : Nat
  ai : Nat
  val : Nat
deriving DecidableEq, Repr

def readHead : Dec Head := do
  need 1
  let ib ← advance 1
  let ib := beNat ib
  let major := ib >>> 5
  let ai := ib % 32
  if ai < 24 then
    return ⟨major, ai, ai⟩
  else if ai = 24 then
    arg major ai 1
  else if ai = 25 then
    arg major ai 2
  else if ai = 26 then
    arg major ai 4
  else if ai = 27 then
    arg major ai 8
  else
    Dec.error
where
  arg (major ai n : Nat) : Dec Head := do
    need n
    let bs ← advance n
    return ⟨major, ai, beNat bs⟩

def cdecPeekNull (d : Cdec) : Bool :=
  !d.err && d.p.head? == some 0xf6

def cdecUint : Dec Nat := do
  let h ← readHead
  if h.major ≠ 0 then
    Dec.error
  else
    return h.val

def int64Max : Nat := 2 ^ 63 - 1

def cdecInt : Dec Int := do
  let h ← readHead
  if h.major = 0 then
    if h.val > int64Max then Dec.error else return h.val
  else if h.major = 1 then
    if h.val > int64Max then Dec.error else return -1 - (h.val : Int)
  else
    Dec.error

def readString (wantMajor : Nat) : Dec Bytes := do
  let h ← readHead
  fun d =>
    if h.major ≠ wantMajor ∨ d.p.length < h.val then
      Dec.error d
    else
      advance h.val d

def cdecBytes : Dec Bytes :=
  readString 2

def cdecText : Dec Bytes :=
  readString 3

def readCount (wantMajor : Nat) : Dec Nat := do
  let h ← readHead
  if h.major ≠ wantMajor then
    Dec.error
  else
    -- the cost of a map is a 64-bit product
    let cost := if wantMajor = 5 then h.val * 2 % 2 ^ 64 else h.val
    fun d =>
      if d.p.length < cost then
        Dec.error d
      else
        Dec.pure h.val d

def cdecArray : Dec Nat :=
  readCount 4

def cdecMap : Dec Nat :=
  readCount 5

def cdecBool : Dec Bool := do
  need 1
  fun d =>
    if d.p.head? = some 0xf4 then
      (some false, { d with p := d.p.drop 1 })
    else if d.p.head? = some 0xf5 then
      (some true, { d with p := d.p.drop 1 })
    else
      Dec.error d

def cdecNull : Dec Unit := do
  need 1
  fun d =>
    if d.p.head? ≠ some 0xf6 then
      Dec.error d
    else
      (some (), { d with p := d.p.drop 1 })

def skipItem (levels : Nat) : Dec Unit :=
  match levels with
  | 0 => Dec.error
  | levels + 1 => do
    let h ← readHead
    if h.major = 0 ∨ h.major = 1 then
      return ()
    else if h.major = 2 ∨ h.major = 3 then
      fun d =>
        if d.p.length < h.val then
          Dec.error d
        else
          (some (), { d with p := d.p.drop h.val })
    else if h.major = 4 then
      Dec.loop h.val (fun _ => skipItem levels) ()
    else if h.major = 5 then
      Dec.loop (h.val * 2 % 2 ^ 64) (fun _ => skipItem levels) ()
    else if h.major = 6 then
      skipItem levels
    else
      return ()

def cdecSkip : Dec Unit :=
  skipItem 33

def cdecSpan : Dec Bytes := fun d =>
  match cdecSkip d with
  | (some _, d') => (some (d.p.take (d.p.length - d'.p.length)), d')
  | (none, d') => (none, d')

end Harp
